import Marginalia.Binary32.Format
import Mathlib.Data.Rat.Floor
import Mathlib.Tactic.Linarith

/-! Rationals rounded to integers and to powers of two: how far the result is from the rational,
that integers stay where they are, and that the order is kept. -/
namespace Marginalia

variable {x y : ℚ} {n : ℤ}

theorem nearestEven_cases (x : ℚ) :
    (nearestEven x = ⌊x⌋ ∧ x - ⌊x⌋ ≤ 1 / 2) ∨ (nearestEven x = ⌊x⌋ + 1 ∧ 1 / 2 ≤ x - ⌊x⌋) := by
  have hfloor : x.floor = ⌊x⌋ := rfl
  simp only [nearestEven, hfloor]
  split_ifs with hless hmore heven
  · exact .inl ⟨rfl, hless.le⟩
  · exact .inr ⟨rfl, hmore.le⟩
  · exact .inl ⟨rfl, not_lt.mp hmore⟩
  · exact .inr ⟨rfl, not_lt.mp hless⟩

/-- The nearest integer is half a unit away at most. -/
theorem abs_nearestEven_sub_le (x : ℚ) : |(nearestEven x : ℚ) - x| ≤ 1 / 2 := by
  have hlow := Int.floor_le x
  have hhigh := Int.lt_floor_add_one x
  rw [abs_le]
  rcases nearestEven_cases x with ⟨heq, hrest⟩ | ⟨heq, hrest⟩
  · rw [heq]
    constructor <;> linarith
  · rw [heq]
    push_cast
    constructor <;> linarith

theorem nearestEven_intCast (n : ℤ) : nearestEven n = n := by
  have hfloor := Int.floor_intCast (R := ℚ) n
  rcases nearestEven_cases n with ⟨heq, -⟩ | ⟨-, hrest⟩
  · rw [heq, hfloor]
  · rw [hfloor, sub_self] at hrest
    exact absurd hrest (by norm_num)

theorem nearestEven_mono (h : x ≤ y) : nearestEven x ≤ nearestEven y := by
  have hfloor := Int.floor_le_floor h
  rcases nearestEven_cases x with ⟨hx, -⟩ | ⟨hx, hxrest⟩ <;>
    rcases nearestEven_cases y with ⟨hy, hyrest⟩ | ⟨hy, -⟩
  · omega
  · omega
  · by_cases heq : ⌊x⌋ = ⌊y⌋
    · -- The smaller one goes up and the larger one down only from one and the same middle.
      have hxy : x = y := by
        rw [heq] at hxrest
        linarith
      rw [hxy]
    · omega
  · omega

/-- A rational less than half a unit from an integer goes there. -/
theorem nearestAway_eq (h : |x - n| < 1 / 2) : nearestAway x = n := by
  have hfloor (y : ℚ) : y.floor = ⌊y⌋ := rfl
  rw [abs_lt] at h
  rw [nearestAway, hfloor, hfloor]
  split_ifs
  · rw [Int.floor_eq_iff]
    constructor <;> linarith
  · rw [neg_eq_iff_eq_neg, Int.floor_eq_iff]
    push_cast
    constructor <;> linarith

theorem nearestAway_of_nonneg (h : 0 ≤ x) : nearestAway x = ⌊x + 1 / 2⌋ := if_pos h

theorem integerPart_of_nonneg (h : 0 ≤ x) : integerPart x = ⌊x⌋ := if_pos h

/-- Less than a whole unit has no integer part. -/
theorem integerPart_eq_zero (h : |x| < 1) : integerPart x = 0 := by
  have hfloor (y : ℚ) : y.floor = ⌊y⌋ := rfl
  rw [abs_lt] at h
  rw [integerPart, hfloor, hfloor]
  split_ifs with hx
  · rw [Int.floor_eq_zero_iff]
    exact ⟨hx, h.2⟩
  · rw [neg_eq_zero, Int.floor_eq_zero_iff]
    constructor <;> linarith

theorem two_pow_log2_bounds {m : ℕ} (hm : m ≠ 0) :
    (2 : ℚ) ^ (m.log2 : ℤ) ≤ m ∧ (m : ℚ) < (2 : ℚ) ^ ((m.log2 : ℤ) + 1) := by
  constructor
  · rw [zpow_natCast]
    exact_mod_cast Nat.log2_self_le hm
  · rw [← Nat.cast_succ, zpow_natCast]
    exact_mod_cast Nat.lt_log2_self

/-- A positive rational lies between two neighbouring powers of two. -/
theorem floorLog2_spec (h : 0 < x) :
    (2 : ℚ) ^ floorLog2 x ≤ x ∧ x < (2 : ℚ) ^ (floorLog2 x + 1) := by
  have hnum : x.num.natAbs ≠ 0 := Int.natAbs_ne_zero.mpr (Rat.num_ne_zero.mpr h.ne')
  obtain ⟨hlow, hhigh⟩ := two_pow_log2_bounds hnum
  obtain ⟨hdlow, hdhigh⟩ := two_pow_log2_bounds x.den_nz
  have hx : x * x.den = x.num.natAbs := by
    rw [Rat.mul_den_eq_num, Nat.cast_natAbs, abs_of_pos (Rat.num_pos.mpr h)]
  have hden : (0 : ℚ) < x.den := by exact_mod_cast x.den_pos
  rw [← hx] at hlow hhigh
  generalize hk : (x.num.natAbs.log2 : ℤ) = a at hlow hhigh
  generalize hl : (x.den.log2 : ℤ) = b at hdlow hdhigh
  have hlower : (2 : ℚ) ^ (a - b - 1) < x := by
    apply lt_of_mul_lt_mul_right _ (zpow_pos two_pos (b + 1)).le
    calc (2 : ℚ) ^ (a - b - 1) * 2 ^ (b + 1)
        = 2 ^ a := by rw [← zpow_add₀ two_ne_zero]; congr 1; omega
      _ ≤ x * x.den := hlow
      _ < x * 2 ^ (b + 1) := mul_lt_mul_of_pos_left hdhigh h
  have hupper : x < (2 : ℚ) ^ (a - b + 1) := by
    apply lt_of_mul_lt_mul_right _ (zpow_pos two_pos b).le
    calc x * 2 ^ b
        ≤ x * x.den := mul_le_mul_of_nonneg_left hdlow h.le
      _ < 2 ^ (a + 1) := hhigh
      _ = 2 ^ (a - b + 1) * 2 ^ b := by rw [← zpow_add₀ two_ne_zero]; congr 1; omega
  simp only [floorLog2, hk, hl]
  split_ifs with hle
  · exact ⟨hle, hupper⟩
  · rw [sub_add_cancel]
    exact ⟨hlower.le, not_le.mp hle⟩

end Marginalia
