/-
LiteKV.Compare — the comparison operators of `src/str.h`.

`StaticString` compares with `strcmp`, which stops at the first NUL, and
looks at the lengths in two of its operators; `DynamicString` compares the
bytes of the shorter length with `memcmp`, and then the lengths. Bytes are
compared as `unsigned char` by both.
-/
import LiteKV.Str

namespace LiteKV

/-- `strcmp`; the end of a buffer is its NUL. -/
def strcmp : Bytes → Bytes → Int
  | [], b => -((b.headD 0).toNat : Int)
  | x :: a, b =>
      let y := b.headD 0
      if x ≠ y then (x.toNat : Int) - y.toNat
      else if x = 0 then 0
      else strcmp a b.tail

/-- `memcmp`. -/
def memcmp : (n : Nat) → Bytes → Bytes → Int
  | 0, _, _ => 0
  | n + 1, a, b =>
      let x := a.headD 0
      let y := b.headD 0
      if x ≠ y then (x.toNat : Int) - y.toNat else memcmp n a.tail b.tail

namespace StaticString

/-- `operator!=`. -/
def ne (a b : StaticString) : Bool := strcmp a.buf b.buf != 0 && a.length != b.length

/-- `operator<`. -/
def lt (a b : StaticString) : Bool := strcmp a.buf b.buf < 0

/-- `operator>`. -/
def gt (a b : StaticString) : Bool := strcmp a.buf b.buf > 0

end StaticString

namespace DynamicString

/-- `operator==`. -/
def eq (a b : DynamicString) : Bool :=
  a.toStdString.length == b.toStdString.length &&
    memcmp a.toStdString.length a.toStdString b.toStdString == 0

/-- `operator!=`. -/
def ne (a b : DynamicString) : Bool :=
  a.toStdString.length != b.toStdString.length ||
    memcmp a.toStdString.length a.toStdString b.toStdString != 0

/-- `operator<`. -/
def lt (a b : DynamicString) : Bool :=
  let len := a.toStdString.length
  let otherLen := b.toStdString.length
  let ans1 := memcmp (min len otherLen) a.toStdString b.toStdString
  if ans1 = 0 then len < otherLen else ans1 < 0

/-- `operator>`. -/
def gt (a b : DynamicString) : Bool :=
  let len := a.toStdString.length
  let otherLen := b.toStdString.length
  let ans1 := memcmp (min len otherLen) a.toStdString b.toStdString
  if ans1 = 0 then len > otherLen else ans1 > 0

end DynamicString

end LiteKV
