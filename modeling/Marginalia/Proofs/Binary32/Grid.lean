import Marginalia.Proofs.Binary32.Integers
import Mathlib.Order.Monotone.Basic
import Mathlib.Tactic.Ring

/-! The grid of a binary format. Its points are numbered in increasing order, every point is rounded
to itself, rounding keeps the order, and it moves a rational by half a unit of its binade at
most. -/
namespace Marginalia

variable {x y : ℚ} {k : ℤ} {e m n : ℕ}

theorem floorLog2_lt (h : 0 < x) (hhigh : x < (2 : ℚ) ^ k) : floorLog2 x < k :=
  (zpow_lt_zpow_iff_right₀ one_lt_two).mp ((floorLog2_spec h).1.trans_lt hhigh)

theorem le_floorLog2 (hlow : (2 : ℚ) ^ k ≤ x) : k ≤ floorLog2 x := by
  have hspec := floorLog2_spec ((zpow_pos two_pos k).trans_le hlow)
  have hlt := (zpow_lt_zpow_iff_right₀ one_lt_two).mp (hlow.trans_lt hspec.2)
  omega

namespace BinaryFormat

variable (f : BinaryFormat)

theorem binade_pos : 0 < f.binade := Nat.pow_pos two_pos

theorem cast_binade : (f.binade : ℚ) = (2 : ℚ) ^ ((f.precision - 1 : ℕ) : ℤ) := by
  rw [zpow_natCast]
  exact_mod_cast rfl

/-- The whole number of units that a positive rational is rounded to. -/
def significand (x : ℚ) : ℕ := (nearestEven (x / (2 : ℚ) ^ f.unitExponent x)).toNat

theorem leastExponent_le (x : ℚ) : f.leastExponent ≤ f.unitExponent x := Int.le_max_right _ _

theorem div_unit_lt (h : 0 < x) : x / (2 : ℚ) ^ f.unitExponent x < 2 * f.binade := by
  have hq : floorLog2 x + 1 ≤ (f.precision - 1 : ℕ) + 1 + f.unitExponent x := by
    have := Int.le_max_left (floorLog2 x - (f.precision - 1 : ℕ)) f.leastExponent
    rw [unitExponent]
    omega
  rw [div_lt_iff₀ (zpow_pos two_pos _), cast_binade, ← zpow_one_add₀ two_ne_zero,
    ← zpow_add₀ two_ne_zero, add_comm 1]
  exact (floorLog2_spec h).2.trans_le (zpow_le_zpow_right₀ one_le_two hq)

/-- Above the least exponent a rational is a full binade of its units. -/
theorem binade_le_div_unit (h : 0 < x) (hq : f.leastExponent < f.unitExponent x) :
    f.binade ≤ x / (2 : ℚ) ^ f.unitExponent x := by
  have hq' : f.unitExponent x = floorLog2 x - (f.precision - 1 : ℕ) := by
    rw [unitExponent] at hq ⊢
    omega
  rw [le_div_iff₀ (zpow_pos two_pos _), cast_binade, ← zpow_add₀ two_ne_zero, hq']
  have hsum :
      ((f.precision - 1 : ℕ) : ℤ) + (floorLog2 x - (f.precision - 1 : ℕ)) = floorLog2 x := by
    omega
  rw [hsum]
  exact (floorLog2_spec h).1

theorem cast_significand (h : 0 < x) :
    (f.significand x : ℤ) = nearestEven (x / (2 : ℚ) ^ f.unitExponent x) := by
  have hnonneg := nearestEven_mono (div_pos h (zpow_pos two_pos (f.unitExponent x))).le
  have hzero := nearestEven_intCast 0
  rw [Int.cast_zero] at hzero
  rw [significand]
  omega

theorem significand_le (h : 0 < x) : f.significand x ≤ 2 * f.binade := by
  have hmono := nearestEven_mono (f.div_unit_lt h).le
  have htwo := nearestEven_intCast (2 * f.binade : ℕ)
  push_cast at htwo
  rw [htwo, ← f.cast_significand h] at hmono
  omega

theorem binade_le_significand (h : 0 < x) (hq : f.leastExponent < f.unitExponent x) :
    f.binade ≤ f.significand x := by
  have hmono := nearestEven_mono (f.binade_le_div_unit h hq)
  have hone := nearestEven_intCast (f.binade : ℕ)
  rw [Int.cast_natCast] at hone
  rw [hone, ← f.cast_significand h] at hmono
  omega

theorem number_eq (h : 0 < x) : f.number x =
    (f.unitExponent x - f.leastExponent).toNat * f.binade + f.significand x := if_pos h

theorem number_of_nonpos (h : x ≤ 0) : f.number x = 0 := if_neg (not_lt.mpr h)

/-- A point is a whole number of units, of the least ones or of at least a binade of others. -/
theorem point_eq (h : f.binade ≤ m ∨ e = 0) (hm : m ≤ 2 * f.binade) :
    f.point (e * f.binade + m) = m * (2 : ℚ) ^ (f.leastExponent + e) := by
  have hpos := f.binade_pos
  by_cases hlow : m < f.binade
  · have he : e = 0 := h.resolve_left (by omega)
    rw [he, Nat.zero_mul, Nat.zero_add, point, if_pos hlow, Int.natCast_zero, add_zero]
  · obtain ⟨r, rfl⟩ := Nat.exists_eq_add_of_le (not_lt.mp hlow)
    have hsplit : e * f.binade + (f.binade + r) = r + f.binade * (e + 1) := by ring
    rw [point, if_neg (by omega), hsplit, Nat.add_mul_div_left _ _ hpos,
      Nat.add_mul_mod_self_left]
    rcases Nat.lt_or_ge r f.binade with hr | hr
    · rw [Nat.div_eq_of_lt hr, Nat.mod_eq_of_lt hr, Nat.zero_add, Nat.add_sub_cancel]
    · -- A full second binade is the first point of the next one.
      have hr' : r = f.binade := by omega
      have hexponent : f.leastExponent + ((1 + (e + 1) - 1 : ℕ) : ℤ) =
          f.leastExponent + e + 1 := by omega
      rw [hr', Nat.div_self hpos, Nat.mod_self, Nat.add_zero, hexponent,
        zpow_add_one₀ two_ne_zero]
      push_cast
      ring

/-- Every number of a point is cut in this way. -/
theorem exists_cut (n : ℕ) :
    ∃ e m, n = e * f.binade + m ∧ (f.binade ≤ m ∨ e = 0) ∧ m < 2 * f.binade := by
  have hpos := f.binade_pos
  by_cases hlow : n < f.binade
  · exact ⟨0, n, by omega, .inr rfl, by omega⟩
  · obtain ⟨d, hd⟩ : ∃ d, n / f.binade = d + 1 :=
      Nat.exists_eq_add_one_of_ne_zero (Nat.div_pos (not_lt.mp hlow) hpos).ne'
    have hmod := Nat.mod_lt n hpos
    refine ⟨d, f.binade + n % f.binade, ?_, .inl (Nat.le_add_right _ _), by omega⟩
    calc n = f.binade * (n / f.binade) + n % f.binade := (Nat.div_add_mod _ _).symm
      _ = d * f.binade + (f.binade + n % f.binade) := by rw [hd]; ring

theorem point_strictMono : StrictMono f.point := by
  apply strictMono_nat_of_lt_succ
  intro n
  obtain ⟨e, m, rfl, hcut, hm⟩ := f.exists_cut n
  have hnext : f.binade ≤ m + 1 ∨ e = 0 := hcut.imp_left (by omega)
  rw [add_assoc, f.point_eq hcut hm.le, f.point_eq hnext hm]
  apply mul_lt_mul_of_pos_right _ (zpow_pos two_pos _)
  exact_mod_cast Nat.lt_succ_self m

theorem point_zero : f.point 0 = 0 := by
  have h := f.point_eq (e := 0) (m := 0) (.inr rfl) (Nat.zero_le _)
  simpa using h

theorem point_nonneg (n : ℕ) : 0 ≤ f.point n := by
  rw [← f.point_zero]
  exact f.point_strictMono.monotone (Nat.zero_le n)

/-- A positive rational is rounded to the nearest whole number of its units. -/
theorem round_eq (h : 0 < x) : f.round x =
    nearestEven (x / (2 : ℚ) ^ f.unitExponent x) * (2 : ℚ) ^ f.unitExponent x := by
  have hq := f.leastExponent_le x
  have hcut : f.binade ≤ f.significand x ∨ (f.unitExponent x - f.leastExponent).toNat = 0 := by
    rcases hq.lt_or_eq with hlt | heq
    · exact .inl (f.binade_le_significand h hlt)
    · exact .inr (by omega)
  have hexponent : f.leastExponent + (f.unitExponent x - f.leastExponent).toNat =
      f.unitExponent x := by omega
  rw [round, f.number_eq h, f.point_eq hcut (f.significand_le h), hexponent,
    ← f.cast_significand h]
  rfl

theorem round_of_nonpos (h : x ≤ 0) : f.round x = 0 := by
  rw [round, f.number_of_nonpos h, point_zero]

/-- Rounding moves by half a unit at most. -/
theorem abs_round_sub_le (h : 0 < x) : |f.round x - x| ≤ (2 : ℚ) ^ f.unitExponent x / 2 := by
  have hunit : (0 : ℚ) < 2 ^ f.unitExponent x := zpow_pos two_pos _
  have hx : x = x / 2 ^ f.unitExponent x * 2 ^ f.unitExponent x :=
    (div_mul_cancel₀ x hunit.ne').symm
  calc |f.round x - x|
      = |(nearestEven (x / 2 ^ f.unitExponent x) : ℚ) - x / 2 ^ f.unitExponent x| *
          2 ^ f.unitExponent x := by
        rw [f.round_eq h, ← abs_of_pos hunit, ← abs_mul, sub_mul, abs_of_pos hunit, ← hx]
    _ ≤ 1 / 2 * 2 ^ f.unitExponent x :=
        mul_le_mul_of_nonneg_right (abs_nearestEven_sub_le _) hunit.le
    _ = 2 ^ f.unitExponent x / 2 := by ring

/-- A rational below a power of two is moved by half a unit of the binade below it at most. -/
theorem abs_round_sub_le_of_lt (h : 0 ≤ x) (hx : x < (2 : ℚ) ^ k)
    (hk : f.leastExponent + (f.precision - 1 : ℕ) < k) :
    |f.round x - x| ≤ (2 : ℚ) ^ (k - (f.precision - 1 : ℕ) - 2) := by
  rcases h.eq_or_lt with rfl | hpos
  · rw [f.round_of_nonpos le_rfl, sub_self, abs_zero]
    exact (zpow_pos two_pos _).le
  · have hlog := floorLog2_lt hpos hx
    have hunit : f.unitExponent x ≤ k - (f.precision - 1 : ℕ) - 1 := by
      rw [unitExponent]
      omega
    calc |f.round x - x|
        ≤ 2 ^ f.unitExponent x / 2 := f.abs_round_sub_le hpos
      _ = (2 : ℚ) ^ (f.unitExponent x - 1) := (zpow_sub_one₀ two_ne_zero _).symm
      _ ≤ 2 ^ (k - (f.precision - 1 : ℕ) - 2) := zpow_le_zpow_right₀ one_le_two (by omega)

/-- A binade of the larger one of two rationals lies above all the significands of the smaller
one, whose units are finer. -/
theorem number_mono (h : x ≤ y) : f.number x ≤ f.number y := by
  rcases le_or_gt x 0 with hx | hx
  · rw [f.number_of_nonpos hx]
    exact Nat.zero_le _
  have hy := hx.trans_le h
  rw [f.number_eq hx, f.number_eq hy]
  have hlog : floorLog2 x ≤ floorLog2 y := le_floorLog2 ((floorLog2_spec hx).1.trans h)
  have hunit : f.unitExponent x ≤ f.unitExponent y := by
    rw [unitExponent, unitExponent]
    omega
  have hleast := f.leastExponent_le x
  rcases hunit.eq_or_lt with heq | hlt
  · have hmono : nearestEven (x / 2 ^ f.unitExponent x) ≤
        nearestEven (y / 2 ^ f.unitExponent x) :=
      nearestEven_mono (div_le_div_of_nonneg_right h (zpow_pos two_pos _).le)
    have hcast := f.cast_significand hx
    have hcast' := f.cast_significand hy
    rw [← heq] at hcast' ⊢
    omega
  · have hmany := f.significand_le hx
    have hfew := f.binade_le_significand hy (by omega)
    obtain ⟨d, hd⟩ : ∃ d, (f.unitExponent y - f.leastExponent).toNat =
        (f.unitExponent x - f.leastExponent).toNat + 1 + d := Nat.exists_eq_add_of_le (by omega)
    rw [hd, add_mul, add_mul, one_mul]
    omega

/-- What is a whole number of units that are not too fine for the format is rounded to itself. -/
theorem round_mul_two_pow (hm : m < 2 * f.binade) (hk : f.leastExponent ≤ k) :
    f.round (m * (2 : ℚ) ^ k) = m * (2 : ℚ) ^ k := by
  rcases Nat.eq_zero_or_pos m with rfl | hpos
  · rw [f.round_of_nonpos (by simp)]
    simp
  have hx : 0 < (m : ℚ) * 2 ^ k := mul_pos (by exact_mod_cast hpos) (zpow_pos two_pos _)
  have hlog : floorLog2 ((m : ℚ) * 2 ^ k) < (f.precision - 1 : ℕ) + 1 + k := by
    apply floorLog2_lt hx
    rw [zpow_add₀ two_ne_zero, zpow_add_one₀ two_ne_zero, ← f.cast_binade, mul_comm (f.binade : ℚ)]
    apply mul_lt_mul_of_pos_right _ (zpow_pos two_pos _)
    exact_mod_cast hm
  have hunit : f.unitExponent (m * 2 ^ k) ≤ k := by
    rw [unitExponent]
    omega
  rw [f.round_eq hx]
  generalize f.unitExponent ((m : ℚ) * 2 ^ k) = q at hunit
  obtain ⟨d, rfl⟩ := Int.le.dest hunit
  -- The units around it are finer still.
  have hwhole : (m : ℚ) * 2 ^ (q + d) / 2 ^ q = ((m * 2 ^ d : ℕ) : ℤ) := by
    rw [zpow_add₀ two_ne_zero, zpow_natCast, div_eq_iff (zpow_pos two_pos q).ne']
    push_cast
    ring
  rw [hwhole, nearestEven_intCast, ← hwhole, div_mul_cancel₀ _ (zpow_pos two_pos q).ne']

/-- Each point is rounded to itself. -/
theorem round_point (n : ℕ) : f.round (f.point n) = f.point n := by
  obtain ⟨e, m, rfl, hcut, hm⟩ := f.exists_cut n
  rw [f.point_eq hcut hm.le]
  exact f.round_mul_two_pow hm (by omega)

theorem number_point (n : ℕ) : f.number (f.point n) = n :=
  f.point_strictMono.injective (f.round_point n)

theorem round_mono (h : x ≤ y) : f.round x ≤ f.round y :=
  f.point_strictMono.monotone (f.number_mono h)

theorem round_nonneg (x : ℚ) : 0 ≤ f.round x := f.point_nonneg _

end BinaryFormat

end Marginalia
