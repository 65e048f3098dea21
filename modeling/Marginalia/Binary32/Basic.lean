import Marginalia.Binary32.Format

/-! 32-bit floating-point numbers as a sign and a magnitude. Magnitudes are grid points of the
single format in increasing order, followed by infinity and the patterns that are no number. -/
namespace Marginalia

/-- A 32-bit floating-point number: its sign bit and its 31 low bits. -/
structure Binary32 where
  negative : Bool
  magnitude : Fin 0x80000000
deriving DecidableEq

namespace Binary32

/-- The magnitude of the infinities; the magnitudes above it are no numbers. -/
def infinityMagnitude : Nat := 0x7F800000

/-- Reads a 32-bit pattern. -/
def ofBits (bits : UInt32) : Binary32 :=
  ⟨decide (0x80000000 ≤ bits.toNat), ⟨bits.toNat % 0x80000000, Nat.mod_lt _ (by decide)⟩⟩

/-- The 32-bit pattern of a number. -/
def toBits (x : Binary32) : UInt32 :=
  UInt32.ofNat (x.magnitude.val + if x.negative then 0x80000000 else 0)

/-- The quiet pattern that is no number. -/
def nan : Binary32 := ⟨false, 0x7FC00000⟩

def infinity (negative : Bool) : Binary32 := ⟨negative, 0x7F800000⟩

def zero (negative : Bool) : Binary32 := ⟨negative, 0⟩

def isNaN (x : Binary32) : Bool := decide (infinityMagnitude < x.magnitude.val)

def isInfinite (x : Binary32) : Bool := decide (x.magnitude.val = infinityMagnitude)

def isFinite (x : Binary32) : Bool := decide (x.magnitude.val < infinityMagnitude)

def isZero (x : Binary32) : Bool := decide (x.magnitude.val = 0)

/-- The rational that a finite number stands for; both zeros stand for zero. -/
def value (x : Binary32) : Rat :=
  if x.negative then -BinaryFormat.single.point x.magnitude.val
  else BinaryFormat.single.point x.magnitude.val

/-- The number nearest to a rational, an infinity past the last finite one. A zero takes the
given sign, any other rational keeps its own, also when it rounds to zero. -/
def ofRat (negativeZero : Bool) (x : Rat) : Binary32 :=
  if x = 0 then zero negativeZero
  else
    ⟨decide (x < 0), ⟨min (BinaryFormat.single.number x.abs) infinityMagnitude,
      Nat.lt_of_le_of_lt (Nat.min_le_right _ _) (by decide)⟩⟩

/-- The number nearest to a natural number. -/
def ofNat (n : Nat) : Binary32 := ofRat false n

instance (n : Nat) : OfNat Binary32 n := ⟨ofNat n⟩

/-- The position of a number on the line, the two zeros at one place. -/
def rank (x : Binary32) : Int :=
  if x.negative then -x.magnitude.val else x.magnitude.val

/-- Order of the numbers; a pattern that is no number compares with nothing, itself included. -/
def compare? (x y : Binary32) : Option Ordering :=
  if x.isNaN || y.isNaN then none else some (compare x.rank y.rank)

def less (x y : Binary32) : Bool := x.compare? y == some .lt

def atMost (x y : Binary32) : Bool := x.less y || x.compare? y == some .eq

def same (x y : Binary32) : Bool := x.compare? y == some .eq

/-- The larger of two numbers; one that is no number gives way to the other. -/
def larger (x y : Binary32) : Binary32 :=
  if x.isNaN || x.less y then y else x

/-- The smaller of two numbers; one that is no number gives way to the other. -/
def smaller (x y : Binary32) : Binary32 :=
  if x.isNaN || y.less x then y else x

def abs (x : Binary32) : Binary32 := ⟨false, x.magnitude⟩

/-- A finite number goes through `convert` and is kept between `least` and `greatest`, an infinity
is the bound on its side, and no number is zero. -/
def clamp (convert : Rat → Int) (least greatest : Int) (x : Binary32) : Int :=
  if x.isNaN then 0
  else if x.isInfinite then if x.negative then least else greatest
  else max least (min greatest (convert x.value))

/-- Decimal digits of the nearest integer, ties to even, with the sign of the number. -/
def wholeText (x : Binary32) : String :=
  if x.isNaN then "NaN"
  else (if x.negative then "-" else "") ++
    if x.isInfinite then "inf" else toString (nearestEven x.abs.value).toNat

theorem toBits_lt (x : Binary32) :
    x.magnitude.val + (if x.negative then 0x80000000 else 0) < UInt32.size := by
  have h := x.magnitude.isLt
  have : UInt32.size = 0x100000000 := rfl
  split <;> omega

/-- Every number is read back from its pattern. -/
theorem ofBits_toBits (x : Binary32) : ofBits x.toBits = x := by
  obtain ⟨s, m, hm⟩ := x
  have h := toBits_lt ⟨s, m, hm⟩
  cases s <;> simp_all [ofBits, toBits, Nat.mod_eq_of_lt]

/-- Every pattern is some number's. -/
theorem toBits_ofBits (bits : UInt32) : (ofBits bits).toBits = bits := by
  apply UInt32.toNat_inj.1
  have hb := bits.toNat_lt
  have h := toBits_lt (ofBits bits)
  rw [toBits, UInt32.toNat_ofNat_of_lt' h]
  by_cases hs : 0x80000000 ≤ bits.toNat <;> simp [ofBits, hs] <;> omega

end Binary32

end Marginalia
