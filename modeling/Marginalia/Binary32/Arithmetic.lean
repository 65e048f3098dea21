import Marginalia.Binary32.Basic

/-! Arithmetic on 32-bit floating-point numbers: the exact rational result, rounded once. -/
namespace Marginalia

namespace Binary32

def neg (x : Binary32) : Binary32 := ⟨!x.negative, x.magnitude⟩

/-- Infinities absorb finite numbers and annihilate each other; a sum that vanishes is negative
only when both terms are. -/
def add (x y : Binary32) : Binary32 :=
  if x.isNaN || y.isNaN then nan
  else if x.isInfinite then if y.isInfinite && x.negative != y.negative then nan else x
  else if y.isInfinite then y
  else ofRat (x.negative && y.negative) (x.value + y.value)

def sub (x y : Binary32) : Binary32 := x.add y.neg

def mul (x y : Binary32) : Binary32 :=
  let negative := x.negative != y.negative
  if x.isNaN || y.isNaN then nan
  else if x.isInfinite || y.isInfinite then
    if x.isZero || y.isZero then nan else infinity negative
  else ofRat negative (x.value * y.value)

def div (x y : Binary32) : Binary32 :=
  let negative := x.negative != y.negative
  if x.isNaN || y.isNaN then nan
  else if x.isInfinite then if y.isInfinite then nan else infinity negative
  else if y.isInfinite then zero negative
  else if y.isZero then if x.isZero then nan else infinity negative
  else ofRat negative (x.value / y.value)

/-- What is left of `x` after whole steps of `y` toward zero. It is on the grid again, so
rounding does not change it, and it has the sign of `x`. -/
def rem (x y : Binary32) : Binary32 :=
  if x.isNaN || y.isNaN || x.isInfinite || y.isZero then nan
  else if y.isInfinite then x
  else ofRat x.negative (x.value - y.value * integerPart (x.value / y.value))

instance : Neg Binary32 := ⟨neg⟩
instance : Add Binary32 := ⟨add⟩
instance : Sub Binary32 := ⟨sub⟩
instance : Mul Binary32 := ⟨mul⟩
instance : Div Binary32 := ⟨div⟩
instance : Mod Binary32 := ⟨rem⟩

/-- The remainder moved up by one step when it is negative. A tiny negative remainder rounds up
to the whole step. -/
def wrap (x y : Binary32) : Binary32 :=
  let r := x % y
  if r.less 0 then r + y.abs else r

/-- Whether two numbers differ by at most `tolerance`, the difference being rounded. -/
def approxEq (x y tolerance : Binary32) : Bool := (x - y).abs.atMost tolerance

end Binary32

end Marginalia
