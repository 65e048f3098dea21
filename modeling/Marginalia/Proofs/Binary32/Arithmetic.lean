import Marginalia.Binary32.Arithmetic
import Marginalia.Proofs.Binary32.Grid

/-! Operations on finite 32-bit numbers. As long as nothing overflows, each of them gives the number
nearest to the exact result, and comparisons are those of the rationals that the numbers stand
for. -/
namespace Marginalia

namespace Binary32

variable {x y z : Binary32} {v w : ℚ} {k : ℤ} {n : ℕ}

/-- The rational that a rational is rounded to, the two signs alike. -/
def nearest (v : ℚ) : ℚ :=
  if v < 0 then -BinaryFormat.single.round (-v) else BinaryFormat.single.round v

section Nearest

theorem nearest_of_nonneg (h : 0 ≤ v) : nearest v = BinaryFormat.single.round v :=
  if_neg (not_lt.mpr h)

theorem nearest_neg (v : ℚ) : nearest (-v) = -nearest v := by
  have hzero : BinaryFormat.single.round 0 = 0 := BinaryFormat.single.round_of_nonpos le_rfl
  rw [nearest, nearest, neg_neg]
  rcases lt_trichotomy v 0 with h | rfl | h
  · rw [if_pos h, if_neg (neg_pos.mpr h).le.not_gt, neg_neg]
  · simp [hzero]
  · rw [if_pos (neg_lt_zero.mpr h), if_neg h.le.not_gt]

theorem nearest_nonneg (h : 0 ≤ v) : 0 ≤ nearest v := by
  rw [nearest_of_nonneg h]
  exact BinaryFormat.single.round_nonneg v

theorem nearest_mono (h : v ≤ w) : nearest v ≤ nearest w := by
  rcases lt_or_ge v 0 with hv | hv <;> rcases lt_or_ge w 0 with hw | hw
  · rw [nearest, nearest, if_pos hv, if_pos hw, neg_le_neg_iff]
    exact BinaryFormat.single.round_mono (neg_le_neg h)
  · rw [nearest, if_pos hv]
    exact (neg_nonpos.mpr (BinaryFormat.single.round_nonneg _)).trans (nearest_nonneg hw)
  · exact absurd (hv.trans h) (not_le.mpr hw)
  · rw [nearest_of_nonneg hv, nearest_of_nonneg hw]
    exact BinaryFormat.single.round_mono h

theorem nearest_abs (v : ℚ) : nearest |v| = |nearest v| := by
  rcases le_total 0 v with h | h
  · rw [abs_of_nonneg h, abs_of_nonneg (nearest_nonneg h)]
  · have hneg : 0 ≤ -v := neg_nonneg.mpr h
    rw [abs_of_nonpos h, ← abs_neg (nearest v), ← nearest_neg, abs_of_nonneg (nearest_nonneg hneg)]

/-- Below a power of two the nearest number is 25 binary places away from it at most. -/
theorem abs_nearest_sub_le (hv : |v| < (2 : ℚ) ^ k) (hk : -126 < k) :
    |nearest v - v| ≤ (2 : ℚ) ^ (k - 25) := by
  have hround {w : ℚ} (h : 0 ≤ w) (hw : w < (2 : ℚ) ^ k) :
      |nearest w - w| ≤ (2 : ℚ) ^ (k - 25) := by
    rw [nearest_of_nonneg h]
    have herror := BinaryFormat.single.abs_round_sub_le_of_lt h hw
      (show (-149 : ℤ) + (24 - 1 : ℕ) < k by omega)
    have hexponent : k - ((24 - 1 : ℕ) : ℤ) - 2 = k - 25 := by omega
    exact hexponent ▸ herror
  rcases le_total 0 v with h | h
  · exact hround h (lt_of_abs_lt hv)
  · have herror := hround (neg_nonneg.mpr h) (by rwa [abs_of_nonpos h] at hv)
    rwa [nearest_neg, ← neg_sub, neg_sub_neg, neg_sub, ← abs_neg, neg_sub] at herror

/-- Whole numbers of units that are not too fine are numbers of the format. -/
theorem nearest_mul_two_pow (hn : n < 2 ^ 24) (hk : -149 ≤ k) :
    nearest (n * (2 : ℚ) ^ k) = n * (2 : ℚ) ^ k := by
  have hnonneg : (0 : ℚ) ≤ n * (2 : ℚ) ^ k :=
    mul_nonneg (Nat.cast_nonneg n) (zpow_pos two_pos k).le
  rw [nearest_of_nonneg hnonneg]
  exact BinaryFormat.single.round_mul_two_pow hn hk

theorem nearest_natCast (hn : n < 2 ^ 24) : nearest n = n := by
  have h := nearest_mul_two_pow (k := 0) hn (by decide)
  rwa [zpow_zero, mul_one] at h

theorem nearest_zero : nearest 0 = 0 := by
  have h := nearest_natCast (n := 0) (by decide)
  rwa [Nat.cast_zero] at h

end Nearest

section Value

theorem isFinite_iff : x.isFinite = true ↔ x.magnitude.val < infinityMagnitude := by
  rw [isFinite, decide_eq_true_iff]

theorem isNaN_of_isFinite (h : x.isFinite = true) : x.isNaN = false := by
  rw [isFinite_iff] at h
  rw [isNaN, decide_eq_false_iff_not]
  omega

theorem isInfinite_of_isFinite (h : x.isFinite = true) : x.isInfinite = false := by
  rw [isFinite_iff] at h
  rw [isInfinite, decide_eq_false_iff_not]
  omega

theorem isZero_iff : x.isZero = true ↔ x.value = 0 := by
  have hpoint : BinaryFormat.single.point x.magnitude.val = 0 ↔ x.magnitude.val = 0 := by
    rw [← BinaryFormat.single.point_zero, BinaryFormat.single.point_strictMono.injective.eq_iff]
  rw [isZero, decide_eq_true_iff, value]
  split
  · rw [neg_eq_zero, hpoint]
  · rw [hpoint]

/-- A finite number is the nearest number to its value. -/
theorem nearest_value (x : Binary32) : nearest x.value = x.value := by
  have hround := BinaryFormat.single.round_point x.magnitude.val
  have hnonneg := BinaryFormat.single.point_nonneg x.magnitude.val
  rw [value]
  split
  · rw [nearest_neg, nearest_of_nonneg hnonneg, hround]
  · rw [nearest_of_nonneg hnonneg, hround]

theorem value_neg (x : Binary32) : (-x).value = -x.value := by
  change (neg x).value = -x.value
  obtain ⟨_ | _, m⟩ := x
  · rfl
  · exact (neg_neg _).symm

theorem value_abs (x : Binary32) : x.abs.value = |x.value| := by
  have hnonneg := BinaryFormat.single.point_nonneg x.magnitude.val
  obtain ⟨_ | _, m⟩ := x
  · exact (abs_of_nonneg hnonneg).symm
  · change _ = |-BinaryFormat.single.point m.val|
    rw [abs_neg, abs_of_nonneg hnonneg]
    rfl

end Value

/-- A finite number that is the nearest one to a rational. -/
structure Rounds (z : Binary32) (v : ℚ) : Prop where
  finite : z.isFinite = true
  value : z.value = nearest v

namespace Rounds

theorem error_le (h : z.Rounds v) (hv : |v| < (2 : ℚ) ^ k) (hk : -126 < k) :
    |z.value - v| ≤ (2 : ℚ) ^ (k - 25) :=
  h.value ▸ abs_nearest_sub_le hv hk

theorem nonneg (h : z.Rounds v) (hv : 0 ≤ v) : 0 ≤ z.value := h.value ▸ nearest_nonneg hv

theorem le_natCast (h : z.Rounds v) (hn : n < 2 ^ 24) (hv : v ≤ n) : z.value ≤ n := by
  rw [h.value, ← nearest_natCast hn]
  exact nearest_mono hv

theorem natCast_le (h : z.Rounds v) (hn : n < 2 ^ 24) (hv : n ≤ v) : n ≤ z.value := by
  rw [h.value, ← nearest_natCast hn]
  exact nearest_mono hv

theorem abs_le_natCast (h : z.Rounds v) (hn : n < 2 ^ 24) (hv : |v| ≤ n) : |z.value| ≤ n := by
  rw [h.value, ← nearest_abs, ← nearest_natCast hn]
  exact nearest_mono hv

end Rounds

theorem ratAbs_eq (v : ℚ) : v.abs = |v| := by
  rcases le_total 0 v with h | h
  · rw [Rat.abs_of_nonneg h, abs_of_nonneg h]
  · rw [Rat.abs_of_nonpos h, abs_of_nonpos h]

/-- The power of two up to which nothing overflows is a point well below infinity. -/
theorem number_lt_infinityMagnitude (hv : |v| < (2 : ℚ) ^ (127 : ℤ)) :
    BinaryFormat.single.number |v| < infinityMagnitude := by
  have hpoint := BinaryFormat.single.point_eq (e := 253) (m := 2 ^ 23) (.inl le_rfl) (by decide)
  have hpower : (2 : ℚ) ^ (127 : ℤ) = BinaryFormat.single.point (253 * 2 ^ 23 + 2 ^ 23) := by
    refine Eq.trans ?_ hpoint.symm
    norm_num [BinaryFormat.single]
  have hmono := BinaryFormat.single.number_mono hv.le
  rw [hpower, BinaryFormat.single.number_point] at hmono
  exact hmono.trans_lt (by decide)

/-- Rationals that do not overflow are rounded to finite numbers. -/
theorem rounds_ofRat (negativeZero : Bool) (hv : |v| < (2 : ℚ) ^ (127 : ℤ)) :
    (ofRat negativeZero v).Rounds v := by
  by_cases hzero : v = 0
  · rw [ofRat, if_pos hzero, hzero]
    refine ⟨rfl, ?_⟩
    rw [nearest_zero, ← isZero_iff]
    rfl
  · have hnumber := number_lt_infinityMagnitude hv
    have hnegative : (ofRat negativeZero v).negative = decide (v < 0) := by
      rw [ofRat, if_neg hzero]
    have hmagnitude : (ofRat negativeZero v).magnitude.val = BinaryFormat.single.number |v| := by
      rw [← ratAbs_eq] at hnumber ⊢
      rw [ofRat, if_neg hzero]
      exact Nat.min_eq_left hnumber.le
    refine ⟨by rwa [isFinite_iff, hmagnitude], ?_⟩
    rw [Binary32.value, hnegative, hmagnitude, nearest]
    simp only [decide_eq_true_eq]
    split_ifs with hneg
    · rw [abs_of_neg hneg]
      rfl
    · rw [abs_of_nonneg (not_lt.mp hneg)]
      rfl

theorem rounds_add (hx : x.isFinite = true) (hy : y.isFinite = true)
    (h : |x.value + y.value| < (2 : ℚ) ^ (127 : ℤ)) : (x + y).Rounds (x.value + y.value) := by
  change (add x y).Rounds _
  simp only [add, isNaN_of_isFinite hx, isNaN_of_isFinite hy, isInfinite_of_isFinite hx,
    isInfinite_of_isFinite hy, Bool.or_self, Bool.false_eq_true, if_false]
  exact rounds_ofRat _ h

theorem rounds_sub (hx : x.isFinite = true) (hy : y.isFinite = true)
    (h : |x.value - y.value| < (2 : ℚ) ^ (127 : ℤ)) : (x - y).Rounds (x.value - y.value) := by
  change (x + -y).Rounds _
  rw [sub_eq_add_neg, ← value_neg] at h ⊢
  exact rounds_add hx hy h

theorem rounds_mul (hx : x.isFinite = true) (hy : y.isFinite = true)
    (h : |x.value * y.value| < (2 : ℚ) ^ (127 : ℤ)) : (x * y).Rounds (x.value * y.value) := by
  change (mul x y).Rounds _
  simp only [mul, isNaN_of_isFinite hx, isNaN_of_isFinite hy, isInfinite_of_isFinite hx,
    isInfinite_of_isFinite hy, Bool.or_self, Bool.false_eq_true, if_false]
  exact rounds_ofRat _ h

theorem rounds_div (hx : x.isFinite = true) (hy : y.isFinite = true) (hzero : y.value ≠ 0)
    (h : |x.value / y.value| < (2 : ℚ) ^ (127 : ℤ)) : (x / y).Rounds (x.value / y.value) := by
  have hnotZero : y.isZero = false := by
    rwa [← Bool.not_eq_true, isZero_iff]
  change (div x y).Rounds _
  simp only [div, isNaN_of_isFinite hx, isNaN_of_isFinite hy, isInfinite_of_isFinite hx,
    isInfinite_of_isFinite hy, hnotZero, Bool.or_self, Bool.false_eq_true, if_false]
  exact rounds_ofRat _ h

theorem rounds_rem (hx : x.isFinite = true) (hy : y.isFinite = true) (hzero : y.value ≠ 0)
    (h : |x.value - y.value * integerPart (x.value / y.value)| < (2 : ℚ) ^ (127 : ℤ)) :
    (x % y).Rounds (x.value - y.value * integerPart (x.value / y.value)) := by
  have hnotZero : y.isZero = false := by
    rwa [← Bool.not_eq_true, isZero_iff]
  change (rem x y).Rounds _
  simp only [rem, isNaN_of_isFinite hx, isNaN_of_isFinite hy, isInfinite_of_isFinite hx,
    isInfinite_of_isFinite hy, hnotZero, Bool.or_self, Bool.false_eq_true, if_false]
  exact rounds_ofRat _ h

/-- What is less than one step already is its own remainder. -/
theorem rem_spec (hx : x.isFinite = true) (hy : y.isFinite = true) (h : |x.value| < y.value)
    (hlt : |x.value| < (2 : ℚ) ^ (127 : ℤ)) :
    (x % y).isFinite = true ∧ (x % y).value = x.value := by
  have hpos : 0 < y.value := (abs_nonneg _).trans_lt h
  have hrest : x.value - y.value * integerPart (x.value / y.value) = x.value := by
    rw [integerPart_eq_zero, Int.cast_zero, mul_zero, sub_zero]
    rwa [abs_div, abs_of_pos hpos, div_lt_one hpos]
  have hrounds := rounds_rem hx hy hpos.ne' (hrest.symm ▸ hlt)
  rw [hrest] at hrounds
  exact ⟨hrounds.finite, hrounds.value.trans (nearest_value x)⟩

theorem ofNat_spec (hn : n < 2 ^ 24) :
    (ofNat n).isFinite = true ∧ (ofNat n).value = n := by
  have hlt : |(n : ℚ)| < (2 : ℚ) ^ (127 : ℤ) := by
    rw [Nat.abs_cast]
    have h : (n : ℚ) < 2 ^ 24 := by exact_mod_cast hn
    exact h.trans (by norm_num)
  have h := rounds_ofRat false hlt
  exact ⟨h.finite, h.value.trans (nearest_natCast hn)⟩

section Order

/-- The rational at a place of the line. -/
def atRank (r : ℤ) : ℚ :=
  if r < 0 then -BinaryFormat.single.point (-r).toNat else BinaryFormat.single.point r.toNat

theorem atRank_rank (x : Binary32) : atRank x.rank = x.value := by
  obtain ⟨_ | _, m⟩ := x
  · exact (if_neg (Int.natCast_nonneg m.val).not_gt).trans rfl
  · change (if -(m.val : ℤ) < 0 then -BinaryFormat.single.point (- -(m.val : ℤ)).toNat
      else BinaryFormat.single.point (-(m.val : ℤ)).toNat) = -BinaryFormat.single.point m.val
    rw [neg_neg, Int.toNat_natCast]
    split_ifs with h
    · rfl
    · have hm : m.val = 0 := by omega
      rw [hm, Nat.cast_zero, neg_zero, Int.toNat_zero, BinaryFormat.single.point_zero, neg_zero]

theorem atRank_lt {r s : ℤ} (h : r < s) : atRank r < atRank s := by
  have hzero := BinaryFormat.single.point_zero
  have hpoint {m n : ℕ} (h : m < n) := BinaryFormat.single.point_strictMono h
  rw [atRank, atRank]
  split_ifs with hr hs hs
  · exact neg_lt_neg (hpoint (by omega))
  · have hpos : 0 < (-r).toNat := by omega
    have hlow := hpoint hpos
    rw [hzero] at hlow
    exact (neg_lt_zero.mpr hlow).trans_le (BinaryFormat.single.point_nonneg _)
  · omega
  · exact hpoint (by omega)

/-- Places of the line are in the order of their rationals. -/
theorem atRank_lt_iff {r s : ℤ} : atRank r < atRank s ↔ r < s := by
  refine ⟨fun h => ?_, atRank_lt⟩
  rcases Int.lt_trichotomy r s with hlt | rfl | hlt
  · exact hlt
  · exact absurd h (lt_irrefl _)
  · exact absurd h (atRank_lt hlt).not_gt

theorem atRank_inj {r s : ℤ} : atRank r = atRank s ↔ r = s := by
  refine ⟨fun h => ?_, congrArg atRank⟩
  rcases Int.lt_trichotomy r s with hlt | heq | hlt
  · exact absurd h (atRank_lt hlt).ne
  · exact heq
  · exact absurd h (atRank_lt hlt).ne'

theorem compare?_eq (hx : x.isFinite = true) (hy : y.isFinite = true) :
    x.compare? y = some (compare x.rank y.rank) := by
  rw [compare?, isNaN_of_isFinite hx, isNaN_of_isFinite hy]
  rfl

theorem less_iff (hx : x.isFinite = true) (hy : y.isFinite = true) :
    x.less y = true ↔ x.value < y.value := by
  rw [← atRank_rank, ← atRank_rank, atRank_lt_iff, less, compare?_eq hx hy]
  simp [compare_lt_iff_lt]

theorem same_iff (hx : x.isFinite = true) (hy : y.isFinite = true) :
    x.same y = true ↔ x.value = y.value := by
  rw [← atRank_rank, ← atRank_rank, atRank_inj, same, compare?_eq hx hy]
  simp

theorem atMost_iff (hx : x.isFinite = true) (hy : y.isFinite = true) :
    x.atMost y = true ↔ x.value ≤ y.value := by
  rw [atMost, Bool.or_eq_true, less_iff hx hy, le_iff_lt_or_eq, ← same_iff hx hy]
  rfl

/-- A number in the range of one step stays where it is when it wraps around. -/
theorem wrap_spec (hx : x.isFinite = true) (hy : y.isFinite = true) (h : 0 ≤ x.value)
    (hstep : x.value < y.value) (hlt : x.value < (2 : ℚ) ^ (127 : ℤ)) :
    (x.wrap y).isFinite = true ∧ (x.wrap y).value = x.value := by
  have habs : |x.value| = x.value := abs_of_nonneg h
  obtain ⟨hfinite, hvalue⟩ := rem_spec hx hy (habs.symm ▸ hstep) (habs.symm ▸ hlt)
  have hzero : (0 : Binary32).value = 0 := (ofNat_spec (n := 0) (by decide)).2
  have hnotLess : ¬(x % y).less 0 = true := by
    rwa [less_iff hfinite rfl, hvalue, hzero, not_lt]
  rw [wrap]
  simp only [if_neg hnotLess]
  exact ⟨hfinite, hvalue⟩

end Order

theorem clamp_of_isFinite (convert : ℚ → ℤ) (least greatest : ℤ) (hx : x.isFinite = true) :
    x.clamp convert least greatest = max least (min greatest (convert x.value)) := by
  simp only [clamp, isNaN_of_isFinite hx, isInfinite_of_isFinite hx, Bool.false_eq_true, if_false]

end Binary32

end Marginalia
