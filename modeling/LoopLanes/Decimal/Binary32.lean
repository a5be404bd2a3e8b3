/-
Decimal text of single-precision numbers.

`constantText` writes the shortest decimal that reads back to the same number:
plainly from `1e-4` up to below `1e16`, with an exponent outside, and always
with a point or an exponent, so that it never looks like an integer.
`fixedText` writes six places.  `ofDecimal` reads digits, a scale and a sign,
rounding to nearest.
-/
import LoopLanes.Decimal.Shortest

namespace LoopLanes.Binary32

open LoopLanes.Decimal

/-- What a single stands for, its sign left aside. -/
inductive Magnitude
  | nan
  | infinite
  /-- the value `m * 2^e`; `narrow` marks a power of two, whose lower
  neighbour is at half the distance of the upper one -/
  | finite (m : Nat) (e : Int) (narrow : Bool)

/-- Whether the sign bit is set. -/
def isNegative (x : Float32) : Bool :=
  x.toBits.toNat ≥ 0x80000000

/-- Decodes the bits of a single. -/
def magnitude (x : Float32) : Magnitude :=
  let bits := x.toBits.toNat % 0x80000000
  let exp : Nat := bits / 0x800000
  let frac : Nat := bits % 0x800000
  if exp = 255 then if frac = 0 then .infinite else .nan
  else if exp = 0 then .finite frac (-149) false
  else .finite (frac + 0x800000) ((exp : Int) - 150) (frac = 0 && 1 < exp)

/-- The interval of reals that round to `m * 2^e`. -/
def roundingInterval (m : Nat) (e : Int) (narrow : Bool) : Interval :=
  let e := e - 2
  let at4 (x : Nat) := num x 2 e
  { lo := at4 (if narrow then 4 * m - 1 else 4 * m - 2)
    n := at4 (4 * m)
    hi := at4 (4 * m + 2)
    d := den 2 e
    closed := m % 2 = 0 }

/-- The shortest decimal that reads back to `m * 2^e`, where `m` is not zero.
Singles have decimal exponents from -46 to 38 and need at most nine digits. -/
def shortestDecimal (m : Nat) (e : Int) (narrow : Bool) : Scaled :=
  shortest (roundingInterval m e narrow) (-46) 90 10

/-- Writes a nonzero decimal: plainly when it lies in `[1e-4, 1e16)`, else as
one digit, the rest after a point, and an exponent. -/
def layout (d : Scaled) : String :=
  let s := (toString d.digits).toList
  let len : Int := s.length
  -- exponent of the first digit
  let top := d.exponent + len - 1
  if -4 ≤ top ∧ top < 16 then
    if 0 ≤ d.exponent then
      String.ofList (s ++ List.replicate d.exponent.toNat '0') ++ ".0"
    else if 0 ≤ top then
      String.ofList (s.take (top + 1).toNat ++ '.' :: s.drop (top + 1).toNat)
    else
      "0." ++ String.ofList (List.replicate (-top - 1).toNat '0' ++ s)
  else
    let tail := s.drop 1
    let mantissa := if tail.isEmpty then s else s.take 1 ++ '.' :: tail
    String.ofList mantissa ++ s!"e{top}"

/-- The sign to write before a number. -/
def signText (x : Float32) : String := if isNegative x then "-" else ""

/-- A single as a constant in program text. -/
def constantText (x : Float32) : String :=
  match magnitude x with
  | .nan => "NaN"
  | .infinite => signText x ++ "inf"
  | .finite m e narrow =>
    if m = 0 then signText x ++ "0.0"
    else signText x ++ layout (shortestDecimal m e narrow)

/-- A single with six places after the point, rounded from its exact value. -/
def fixedText (x : Float32) : String :=
  match magnitude x with
  | .nan => "NaN"
  | .infinite => signText x ++ "inf"
  | .finite m e _ =>
    signText x ++ roundPlaces 6 (num m 2 e) (den 2 e)

/-- The single nearest to `digits * 10^exponent`, negated when asked.  Far
outside the range of singles the answer is settled by the magnitude alone. -/
def ofDecimal (negative : Bool) (digits : Nat) (exponent : Int) : Float32 :=
  let top := exponent + (toString digits).length
  let x : Float32 :=
    if digits = 0 ∨ top < -60 then 0
    else if 60 < top then Float32.ofBits 0x7f800000
    else if 0 ≤ exponent then Float32.ofScientific digits false exponent.toNat
    else Float32.ofScientific digits true (-exponent).toNat
  if negative then -x else x

end LoopLanes.Binary32
