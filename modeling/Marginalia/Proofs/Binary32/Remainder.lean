import Marginalia.Proofs.Binary32.Arithmetic

/-! Remainders of 32-bit numbers. What is left after whole steps toward zero is on the grid already,
so it is exact. Wrapping moves it up by a step when it is negative: the result is the number nearest
to what is left above the whole steps, and it is the whole step itself when that rounds up to it. -/
namespace Marginalia

variable {t : ℚ} {n : ℤ}

theorem integerPart_of_nonpos (h : t ≤ 0) : integerPart t = -⌊-t⌋ := by
  rcases h.lt_or_eq with hlt | rfl
  · exact if_neg (not_le.mpr hlt)
  · rw [integerPart_of_nonneg le_rfl, neg_zero, Int.floor_zero, neg_zero]

/-- The integer part takes away less than a whole unit, and never goes past zero. -/
theorem integerPart_spec (t : ℚ) :
    |t - integerPart t| < 1 ∧ |t - integerPart t| ≤ |t| := by
  rcases le_total 0 t with h | h
  · have hlow := Int.floor_le t
    have hhigh := Int.lt_floor_add_one t
    have hpart : (0 : ℚ) ≤ ⌊t⌋ := by exact_mod_cast Int.floor_nonneg.mpr h
    rw [integerPart_of_nonneg h, abs_of_nonneg (sub_nonneg.mpr hlow), abs_of_nonneg h]
    exact ⟨by linarith, by linarith⟩
  · have hlow := Int.floor_le (-t)
    have hhigh := Int.lt_floor_add_one (-t)
    have hpart : (0 : ℚ) ≤ ⌊-t⌋ := by exact_mod_cast Int.floor_nonneg.mpr (neg_nonneg.mpr h)
    rw [integerPart_of_nonpos h, abs_of_nonpos h, abs_of_nonpos (by push_cast; linarith)]
    push_cast
    exact ⟨by linarith, by linarith⟩

/-- What is left above whole units is the rest behind the integer part, moved up by one unit when it
is negative. -/
theorem fract_eq (t : ℚ) :
    Int.fract t = if t - integerPart t < 0 then t - integerPart t + 1 else t - integerPart t := by
  rcases le_total 0 t with h | h
  · rw [integerPart_of_nonneg h, Int.self_sub_floor, if_neg (not_lt.mpr (Int.fract_nonneg t))]
  · have hlow := Int.floor_le (-t)
    have hhigh := Int.lt_floor_add_one (-t)
    rw [integerPart_of_nonpos h, Int.fract_eq_iff]
    push_cast
    split_ifs with hneg
    · exact ⟨by linarith, by linarith, -⌊-t⌋ - 1, by push_cast; ring⟩
    · exact ⟨not_lt.mp hneg, by linarith, -⌊-t⌋, by push_cast; ring⟩

namespace Binary32

variable {x y : Binary32} {v w : ℚ} {k : ℤ}

section Units

/-- Whole numbers of units, of either sign, are numbers of the format. -/
theorem nearest_intCast_mul_two_pow (hn : |n| < 2 ^ 24) (hk : -149 ≤ k) :
    nearest (n * (2 : ℚ) ^ k) = n * (2 : ℚ) ^ k := by
  obtain ⟨m, rfl | rfl⟩ := n.eq_nat_or_neg
  · rw [Nat.abs_cast] at hn
    exact_mod_cast nearest_mul_two_pow (by exact_mod_cast hn) hk
  · rw [abs_neg, Nat.abs_cast] at hn
    rw [Int.cast_neg, Int.cast_natCast, neg_mul, nearest_neg,
      nearest_mul_two_pow (by exact_mod_cast hn) hk]

/-- Integers are numbers of the format up to the first that is not a whole number of units. -/
theorem nearest_intCast (hn : |n| ≤ 2 ^ 24) : nearest n = n := by
  rcases hn.lt_or_eq with hlt | heq
  · have h := nearest_intCast_mul_two_pow (k := 0) hlt (by decide)
    rwa [zpow_zero, mul_one] at h
  · -- The last one is a single unit of its own size.
    rcases (abs_eq (by norm_num)).mp heq with rfl | rfl
    · have h := nearest_intCast_mul_two_pow (n := 1) (k := 24) (by decide) (by decide)
      norm_num at h ⊢
      exact h
    · have h := nearest_intCast_mul_two_pow (n := -1) (k := 24) (by decide) (by decide)
      norm_num at h ⊢
      exact h

/-- Every number is a whole number of units of some power of two. -/
theorem exists_units (x : Binary32) :
    ∃ (m k : ℤ), |m| < 2 ^ 24 ∧ -149 ≤ k ∧ x.value = m * (2 : ℚ) ^ k := by
  obtain ⟨e, m, hcut, hm, hlt⟩ := BinaryFormat.single.exists_cut x.magnitude.val
  have hpoint : BinaryFormat.single.point x.magnitude.val = m * (2 : ℚ) ^ (-149 + (e : ℤ)) := by
    rw [hcut]
    exact BinaryFormat.single.point_eq hm hlt.le
  have hlt' : |(m : ℤ)| < 2 ^ 24 := by
    rw [Nat.abs_cast]
    exact_mod_cast hlt
  rw [value, hpoint]
  split
  · exact ⟨-m, -149 + e, by rwa [abs_neg], by omega, by push_cast; ring⟩
  · exact ⟨m, -149 + e, hlt', by omega, by push_cast; ring⟩

end Units

section Remainder

/-- What is left of a rational after whole steps toward zero. -/
def leftover (v w : ℚ) : ℚ := v - w * integerPart (v / w)

theorem leftover_eq_mul (hw : w ≠ 0) : leftover v w = w * (v / w - integerPart (v / w)) := by
  rw [leftover, mul_sub, mul_div_cancel₀ v hw]

theorem abs_leftover_lt (hw : w ≠ 0) : |leftover v w| < |w| := by
  rw [leftover_eq_mul hw, abs_mul]
  exact mul_lt_of_lt_one_right (abs_pos.mpr hw) (integerPart_spec _).1

theorem abs_leftover_le (hw : w ≠ 0) : |leftover v w| ≤ |v| := by
  rw [leftover_eq_mul hw, abs_mul]
  calc |w| * |v / w - integerPart (v / w)|
      ≤ |w| * |v / w| := mul_le_mul_of_nonneg_left (integerPart_spec _).2 (abs_nonneg w)
    _ = |v| := by rw [← abs_mul, mul_div_cancel₀ v hw]

/-- The leftover is a whole number of the finer units of the two numbers, and there are no more of
them than this number has. -/
theorem nearest_leftover (hzero : y.value ≠ 0) :
    nearest (leftover x.value y.value) = leftover x.value y.value := by
  have hless := abs_leftover_lt (v := x.value) hzero
  have hnotMore := abs_leftover_le (v := x.value) hzero
  obtain ⟨a, k, ha, hk, hx⟩ := x.exists_units
  obtain ⟨b, l, hb, hl, hy⟩ := y.exists_units
  generalize hq : integerPart (x.value / y.value) = q
  have habs (m j : ℤ) : |m * (2 : ℚ) ^ j| = |m| * (2 : ℚ) ^ j := by
    rw [abs_mul, Int.cast_abs, abs_of_pos (zpow_pos two_pos j : (0 : ℚ) < 2 ^ j)]
  rcases le_total k l with hkl | hkl
  · obtain ⟨d, rfl⟩ := Int.le.dest hkl
    have hunits : leftover x.value y.value = (a - b * 2 ^ d * q : ℤ) * (2 : ℚ) ^ k := by
      rw [leftover, hq, hx, hy, zpow_add₀ two_ne_zero, zpow_natCast]
      push_cast
      ring
    rw [hunits, hx, habs, habs, mul_le_mul_iff_left₀ (zpow_pos two_pos k)] at hnotMore
    have hcount : |a - b * 2 ^ d * q| ≤ |a| := by exact_mod_cast hnotMore
    rw [hunits, nearest_intCast_mul_two_pow (hcount.trans_lt ha) hk]
  · obtain ⟨d, rfl⟩ := Int.le.dest hkl
    have hunits : leftover x.value y.value = (a * 2 ^ d - b * q : ℤ) * (2 : ℚ) ^ l := by
      rw [leftover, hq, hx, hy, zpow_add₀ two_ne_zero, zpow_natCast]
      push_cast
      ring
    rw [hunits, hy, habs, habs, mul_lt_mul_iff_left₀ (zpow_pos two_pos l)] at hless
    have hcount : |a * 2 ^ d - b * q| < |b| := by exact_mod_cast hless
    rw [hunits, nearest_intCast_mul_two_pow (hcount.trans hb) hl]

/-- A remainder is exact. -/
theorem rem_exact (hx : x.isFinite = true) (hy : y.isFinite = true) (hzero : y.value ≠ 0)
    (hlt : |y.value| < (2 : ℚ) ^ (127 : ℤ)) :
    (x % y).isFinite = true ∧ (x % y).value = leftover x.value y.value := by
  have hrounds := rounds_rem hx hy hzero ((abs_leftover_lt hzero).trans hlt)
  exact ⟨hrounds.finite, hrounds.value.trans (nearest_leftover hzero)⟩

/-- What is left above whole steps is the leftover, moved up by a step when it is negative. -/
theorem fract_mul_eq (hw : 0 < w) : Int.fract (v / w) * w =
    if leftover v w < 0 then leftover v w + w else leftover v w := by
  have hsign : leftover v w < 0 ↔ v / w - integerPart (v / w) < 0 := by
    rw [leftover_eq_mul hw.ne', ← not_le, mul_nonneg_iff_of_pos_left hw, not_le]
  rw [fract_eq]
  simp only [hsign]
  rw [leftover_eq_mul hw.ne', mul_comm w]
  split_ifs
  · rw [add_mul, one_mul]
  · rfl

/-- Wrapping gives the number nearest to what is left above the whole steps. -/
theorem rounds_wrap (hx : x.isFinite = true) (hy : y.isFinite = true) (hpos : 0 < y.value)
    (hlt : y.value < (2 : ℚ) ^ (127 : ℤ)) :
    (x.wrap y).Rounds (Int.fract (x.value / y.value) * y.value) := by
  have habs : |y.value| = y.value := abs_of_pos hpos
  obtain ⟨hfinite, hvalue⟩ := rem_exact hx hy hpos.ne' (habs.symm ▸ hlt)
  have hzero : (0 : Binary32).value = 0 := (ofNat_spec (n := 0) (by decide)).2
  have hsign : (x % y).less 0 = true ↔ leftover x.value y.value < 0 := by
    rw [less_iff hfinite rfl, hvalue, hzero]
  rw [wrap, fract_mul_eq hpos]
  by_cases hneg : leftover x.value y.value < 0
  · -- The step is added to a remainder that is exact, so the sum is rounded once.
    have hsum : (x % y).value + y.abs.value = leftover x.value y.value + y.value := by
      rw [hvalue, value_abs, habs]
    have hlow := abs_lt.mp (abs_leftover_lt (v := x.value) hpos.ne')
    rw [habs] at hlow
    rw [if_pos hneg, ← hsum]
    simp only [if_pos (hsign.mpr hneg)]
    apply rounds_add (y := y.abs) hfinite hy
    rw [hsum, abs_lt]
    constructor <;> linarith
  · rw [if_neg hneg]
    simp only [if_neg (mt hsign.mp hneg)]
    exact ⟨hfinite, hvalue.trans (nearest_leftover hpos.ne').symm⟩

end Remainder

end Binary32

end Marginalia
