/-
Decimal digits of exact binary values.

A value is `m * 2^e` with natural `m`.  `shortest` finds the fewest digits of
a decimal that lies in a given interval around the value, and among those the
one nearest to the value (a tie goes upwards).  `roundPlaces` rounds to a fixed
number of places, a tie going to the even neighbour.

All comparisons are between natural numbers: numbers on the decimal grid of
exponent `k` and binary ones are brought to one common scale.
-/

namespace LoopLanes.Decimal

/-- A nonnegative decimal: `digits * 10^exponent`. -/
structure Scaled where
  digits : Nat
  exponent : Int
  deriving DecidableEq, Repr

/-- Drops trailing zeros of the digits; `fuel` bounds their number. -/
def Scaled.normalize : Nat → Scaled → Scaled
  | 0, d => d
  | fuel + 1, d =>
    if d.digits ≠ 0 ∧ d.digits % 10 = 0 then
      normalize fuel ⟨d.digits / 10, d.exponent + 1⟩
    else d

/-- The numerator of `n * b^e` over `den b e`. -/
def num (n b : Nat) (e : Int) : Nat := n * b.pow e.toNat

/-- The denominator that goes with `num`. -/
def den (b : Nat) (e : Int) : Nat := b.pow (-e).toNat

/-- The exponent `k` with `10^k ≤ n/d < 10^(k+1)`, searched among `fuel`
candidates upwards from `k`. -/
def magnitude (n d : Nat) : Nat → Int → Int
  | 0, k => k
  | fuel + 1, k =>
    if n * den 10 (k + 1) < d * num 1 10 (k + 1) then k
    else magnitude n d fuel (k + 1)

/-- The interval of values that a decimal may stand for: `lo/d` to `hi/d`
around `n/d`, ends included when `closed`. -/
structure Interval where
  lo : Nat
  n : Nat
  hi : Nat
  d : Nat
  closed : Bool

namespace Interval

/-- Whether the decimal `g * 10^k` lies in the interval. -/
def contains (i : Interval) (g : Nat) (k : Int) : Bool :=
  let x := num g 10 k * i.d
  let s := den 10 k
  if i.closed then i.lo * s ≤ x && x ≤ i.hi * s
  else i.lo * s < x && x < i.hi * s

/-- The decimal on the grid of exponent `k` that lies in the interval, if one
of the two neighbours of the value does. -/
def onGrid? (i : Interval) (k : Int) : Option Scaled :=
  -- `n/d = q * 10^k + rest`
  let top := i.n * den 10 k
  let unit := i.d * num 1 10 k
  let q := top / unit
  let twice := 2 * (top % unit)
  match i.contains q k, i.contains (q + 1) k with
  | true, true => some ⟨if twice < unit then q else q + 1, k⟩
  | true, false => some ⟨q, k⟩
  | false, true => some ⟨q + 1, k⟩
  | false, false => none

/-- Tries the grids of exponents `k`, `k - 1`, ... -/
def firstGrid (i : Interval) : Nat → Int → Scaled
  | 0, k => ⟨i.n * den 10 k / (i.d * num 1 10 k), k⟩
  | fuel + 1, k =>
    match i.onGrid? k with
    | some d => d
    | none => firstGrid i fuel (k - 1)

end Interval

/-- The fewest digits inside the interval, nearest to its value; `low` is a
decimal exponent not above the value's. -/
def shortest (i : Interval) (low : Int) (span digits : Nat) : Scaled :=
  (i.firstGrid digits (magnitude i.n i.d span low)).normalize digits.succ

/-- The integer nearest to `n / d`, a tie going to the even one. -/
def roundHalfEven (n d : Nat) : Nat :=
  let q := n / d
  let twice := 2 * (n % d)
  if twice < d then q
  else if d < twice then q + 1
  else if q % 2 = 0 then q else q + 1

/-- Digits of `n`, padded with zeros on the left to the given width. -/
def padded (width n : Nat) : String :=
  let s := toString n
  String.ofList (List.replicate (width - s.length) '0') ++ s

/-- `n / d` with exactly `places` digits after the point. -/
def roundPlaces (places n d : Nat) : String :=
  let scale := Nat.pow 10 places
  let r := roundHalfEven (n * scale) d
  s!"{r / scale}." ++ padded places (r % scale)

end LoopLanes.Decimal
