/-! Binary floating-point formats as grids of rationals. A nonnegative rational is rounded to
the grid point nearest to it; grid points are numbered from zero upwards, and the number of a
point is the bit pattern that stores it. -/
namespace Marginalia

/-- The integer nearest to a rational; of two equally near ones the even one. -/
def nearestEven (x : Rat) : Int :=
  let below := x.floor
  let rest := x - below
  if rest < 1 / 2 then below
  else if 1 / 2 < rest then below + 1
  else if below % 2 = 0 then below else below + 1

/-- The integer nearest to a rational; of two equally near ones the one farther from zero. -/
def nearestAway (x : Rat) : Int :=
  if 0 ≤ x then (x + 1 / 2).floor else -(-x + 1 / 2).floor

/-- The integer part of a rational: its fraction is dropped, so it moves toward zero. -/
def integerPart (x : Rat) : Int :=
  if 0 ≤ x then x.floor else -(-x).floor

/-- The greatest `k` with `2 ^ k ≤ x`, for positive `x`. The logarithms of numerator and
denominator give it up to one step. -/
def floorLog2 (x : Rat) : Int :=
  let k : Int := x.num.natAbs.log2 - x.den.log2
  if (2 : Rat) ^ k ≤ x then k else k - 1

/-- A binary format keeps `precision` significant bits and no unit below `2 ^ leastExponent`. -/
structure BinaryFormat where
  precision : Nat
  leastExponent : Int

namespace BinaryFormat

/-- The 32-bit interchange format. -/
def single : BinaryFormat := ⟨24, -149⟩

/-- The 64-bit interchange format. -/
def double : BinaryFormat := ⟨53, -1074⟩

/-- How many grid points lie in one binade, and below the first one. -/
def binade (f : BinaryFormat) : Nat := Nat.pow 2 (f.precision - 1)

/-- The exponent of the distance between the grid points around a positive rational. -/
def unitExponent (f : BinaryFormat) (x : Rat) : Int :=
  max (floorLog2 x - (f.precision - 1 : Nat)) f.leastExponent

/-- The number of the grid point nearest to a rational, ties going to the even number; zero
below zero. A significand that rounds up to the next power of two carries into the exponent,
which is the right grid point again. -/
def number (f : BinaryFormat) (x : Rat) : Nat :=
  if 0 < x then
    let q := f.unitExponent x
    (q - f.leastExponent).toNat * f.binade + (nearestEven (x / (2 : Rat) ^ q)).toNat
  else 0

/-- The grid point with a given number: subnormal below the first binade, and above it a
significand with its leading bit implied. -/
def point (f : BinaryFormat) (n : Nat) : Rat :=
  if n < f.binade then (n : Rat) * (2 : Rat) ^ f.leastExponent
  else ((f.binade + n % f.binade : Nat) : Rat) *
    (2 : Rat) ^ (f.leastExponent + (n / f.binade - 1 : Nat))

/-- The grid point nearest to a nonnegative rational. -/
def round (f : BinaryFormat) (x : Rat) : Rat := f.point (f.number x)

end BinaryFormat

end Marginalia
