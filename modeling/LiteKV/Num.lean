/-
LiteKV.Num — decimal numbers: `std::to_string`, the C and C++ number
scanners the source calls, and the three `CanConvertTo…` functions of
`src/str.cpp`.

All scanners share one grammar: white space, an optional sign, digits;
anything after the digits is left alone. They differ in the range they
accept and in what they do outside it: `strtoll` clamps, `std::stoll`,
`std::stoi` and `std::stoull` throw (here: give `none`), and the unsigned
scanner negates modulo 2^64 when it meets a minus sign.

A NUL byte is neither white space nor a digit, so scanning a buffer that
holds one stops there, as scanning its `c_str()` does.
-/
import LiteKV.Str

namespace LiteKV

/-! ## Printing -/

/-- The digits of `n`, most significant first; `fuel` bounds their number. -/
def natDigits : (fuel : Nat) → Nat → Bytes
  | 0, _ => []
  | fuel + 1, n =>
      if n < 10 then [UInt8.ofNat (48 + n)]
      else natDigits fuel (n / 10) ++ [UInt8.ofNat (48 + n % 10)]

/-- `std::to_string` of an unsigned value. -/
def natToString (n : Nat) : Bytes := natDigits (n + 1) n

/-- `std::to_string` of a signed value. -/
def intToString (v : Int) : Bytes :=
  if v < 0 then 45 :: natToString v.natAbs else natToString v.natAbs

/-! ## Scanning -/

/-- `isspace` in the C locale. -/
def isSpace (b : UInt8) : Bool := b == 32 || (9 ≤ b && b ≤ 13)

/-- `isdigit`. -/
def isDigit (b : UInt8) : Bool := 48 ≤ b && b ≤ 57

/-- The value of a run of digits. -/
def digitsVal (ds : Bytes) : Nat := ds.foldl (fun a b => a * 10 + (b.toNat - 48)) 0

/-- The optional sign: whether it is a minus, and how many bytes it takes. -/
def scanSign : Bytes → Bool × Nat
  | b :: _ => if b = 45 then (true, 1) else if b = 43 then (false, 1) else (false, 0)
  | [] => (false, 0)

/-- White space, sign and digits in front of `s`: the sign, the magnitude and
the number of bytes they take, or `none` when there is no digit. -/
def scanInteger (s : Bytes) : Option (Bool × Nat × Nat) :=
  let ws := (s.takeWhile isSpace).length
  let sign := scanSign (s.drop ws)
  let ds := (s.drop (ws + sign.2)).takeWhile isDigit
  if ds.isEmpty then none else some (sign.1, digitsVal ds, ws + sign.2 + ds.length)

/-- The signed value of a scan. -/
def signedVal (neg : Bool) (m : Nat) : Int := if neg then -(m : Int) else m

/-- `strtoll(s, &p_end, 10)`: the value, clamped to 64 bits, and `p_end - s`. -/
def strtoll (s : Bytes) : Int × Nat :=
  match scanInteger s with
  | none => (0, 0)
  | some (neg, m, used) => (max (-2 ^ 63) (min (2 ^ 63 - 1) (signedVal neg m)), used)

/-- `std::stoll`; `none` stands for the exception. -/
def stoll (s : Bytes) : Option Int :=
  match scanInteger s with
  | none => none
  | some (neg, m, _) =>
      let v := signedVal neg m
      if -2 ^ 63 ≤ v ∧ v < 2 ^ 63 then some v else none

/-- `std::stoi`; `none` stands for the exception. -/
def stoi (s : Bytes) : Option Int :=
  match scanInteger s with
  | none => none
  | some (neg, m, _) =>
      let v := signedVal neg m
      if -2 ^ 31 ≤ v ∧ v < 2 ^ 31 then some v else none

/-- `std::stoull`, and `std::stoul` where `unsigned long` has 64 bits: a minus
sign negates modulo 2^64. -/
def stoull (s : Bytes) : Option Nat :=
  match scanInteger s with
  | none => none
  | some (neg, m, _) =>
      if m < 2 ^ 64 then some (if neg then (2 ^ 64 - m) % 2 ^ 64 else m) else none

/-! ## `CanConvertTo…` -/

/-- `CanConvertToInt64`: the string is what `std::to_string` prints for the
value `std::stoll` reads from it. -/
def canConvertToInt64 (str : Bytes) : Option Int64 :=
  if str.isEmpty || str.length > 20 then none
  else
    match stoll str with
    | none => none
    | some tmp => if intToString tmp = str then some (Int64.ofInt tmp) else none

/-- `CanConvertToInt32`, the same with `std::stoi`. -/
def canConvertToInt32 (str : Bytes) : Option Int :=
  if str.isEmpty || str.length > 20 then none
  else
    match stoi str with
    | none => none
    | some tmp => if intToString tmp = str then some tmp else none

/-- `CanConvertToUInt64`: unlike its siblings it takes whatever `std::stoull`
takes. -/
def canConvertToUInt64 (str : Bytes) : Option Nat :=
  if str.isEmpty then none else stoull str

end LiteKV
