import Marginalia.Proofs.Binary32.Arithmetic

/-! Bounds on the error of several operations in a row. Errors are counted in units of the last
place of numbers between four and eight. -/
namespace Marginalia

namespace Binary32

variable {x y z : Binary32} {v w : ℚ} {a b k m n : ℕ}

/-- A bound on what rounding does to a number below eight, with room to spare. -/
def unit : ℚ := 1 / 2 ^ 22

theorem unit_pos : 0 < unit := by norm_num [unit]

theorem unit_le : unit ≤ 1 / 4000000 := by norm_num [unit]

/-- As long as they are not counted in millions, units do not add up to one. -/
theorem mul_unit_le_one (hn : n ≤ 2 ^ 20) : n * unit ≤ 1 := by
  have hcast : (n : ℚ) ≤ 2 ^ 20 := by exact_mod_cast hn
  calc n * unit
      ≤ 2 ^ 20 * unit := mul_le_mul_of_nonneg_right hcast unit_pos.le
    _ ≤ 1 := by norm_num [unit]

/-- A finite number that is `n` units away from a rational at most. -/
structure Near (z : Binary32) (v : ℚ) (n : ℕ) : Prop where
  finite : z.isFinite = true
  error : |z.value - v| ≤ n * unit

theorem near_value (h : z.isFinite = true) : z.Near z.value 0 :=
  ⟨h, by rw [sub_self, abs_zero, Nat.cast_zero, zero_mul]⟩

theorem near_ofNat (hn : n < 2 ^ 24) : (ofNat n).Near n 0 := by
  obtain ⟨hfinite, hvalue⟩ := ofNat_spec hn
  exact hvalue ▸ near_value hfinite

theorem near_zero : (0 : Binary32).Near 0 0 := near_ofNat (by decide)

theorem near_one : (1 : Binary32).Near 1 0 := near_ofNat (by decide)

theorem near_two : (2 : Binary32).Near 2 0 := near_ofNat (by decide)

section Rounding

theorem abs_lt_of_near (hv : |v - w| ≤ n * unit) (hn : n ≤ 2 ^ 20) (hw : |w| ≤ 6 * 2 ^ k) :
    |v| < (2 : ℚ) ^ ((k : ℤ) + 3) := by
  have hpower : (1 : ℚ) ≤ 2 ^ k := one_le_pow₀ one_le_two
  have htriangle := abs_sub_abs_le_abs_sub v w
  have hone := mul_unit_le_one hn
  rw [zpow_add₀ two_ne_zero, zpow_natCast]
  norm_num
  linarith

theorem no_overflow (hv : |v - w| ≤ n * unit) (hn : n ≤ 2 ^ 20) (hw : |w| ≤ 6 * 2 ^ k)
    (hk : k ≤ 100) : |v| < (2 : ℚ) ^ (127 : ℤ) :=
  (abs_lt_of_near hv hn hw).trans_le (zpow_le_zpow_right₀ one_le_two (by omega))

/-- Rounding adds one unit to the error, and more to that of larger numbers. -/
theorem Rounds.near (h : z.Rounds v) (hv : |v - w| ≤ n * unit) (hn : n ≤ 2 ^ 20)
    (hw : |w| ≤ 6 * 2 ^ k) : z.Near w (n + 2 ^ k) := by
  -- The size of the exact result bounds that of the one that is rounded, by a power of two.
  have hround := h.error_le (abs_lt_of_near hv hn hw) (by omega)
  have hexponent : (2 : ℚ) ^ ((k : ℤ) + 3 - 25) = 2 ^ k * unit := by
    rw [add_sub_assoc, zpow_add₀ two_ne_zero, zpow_natCast]
    norm_num [unit]
  refine ⟨h.finite, ?_⟩
  rw [hexponent] at hround
  push_cast
  rw [add_mul, add_comm]
  exact (abs_sub_le _ v _).trans (add_le_add hround hv)

theorem Rounds.near_self (h : z.Rounds v) (hv : |v| ≤ 6) : z.Near v 1 := by
  have hzero : |v - v| ≤ (0 : ℕ) * unit := by
    rw [sub_self, abs_zero, Nat.cast_zero, zero_mul]
  exact h.near (k := 0) hzero (by decide) (hv.trans_eq (mul_one 6).symm)

end Rounding

/-- The error of a product: that of each factor, scaled by the other. -/
theorem abs_mul_sub_mul_le {s t δ ε c d : ℚ} (hs : |s - v| ≤ ε) (ht : |t| ≤ d) (hv : |v| ≤ c)
    (hw : |t - w| ≤ δ) : |s * t - v * w| ≤ ε * d + c * δ :=
  calc |s * t - v * w|
      = |(s - v) * t + v * (t - w)| := by congr 1; ring
    _ ≤ |s - v| * |t| + |v| * |t - w| := by
        rw [← abs_mul, ← abs_mul]
        exact abs_add_le _ _
    _ ≤ ε * d + c * δ :=
        add_le_add (mul_le_mul hs ht (abs_nonneg _) ((abs_nonneg _).trans hs))
          (mul_le_mul hv hw (abs_nonneg _) ((abs_nonneg _).trans hv))

namespace Near

theorem value_eq (h : z.Near v 0) : z.value = v := by
  have herror := h.error
  rw [Nat.cast_zero, zero_mul, abs_nonpos_iff, sub_eq_zero] at herror
  exact herror

theorem mono (h : z.Near v m) (hmn : m ≤ n) : z.Near v n :=
  ⟨h.finite, h.error.trans (mul_le_mul_of_nonneg_right (Nat.cast_le.mpr hmn) unit_pos.le)⟩

theorem trans (h : z.Near v n) (hw : |v - w| ≤ m * unit) : z.Near w (n + m) := by
  refine ⟨h.finite, ?_⟩
  push_cast
  rw [add_mul]
  exact (abs_sub_le z.value v w).trans (add_le_add h.error hw)

theorem abs_value_le (h : z.Near v n) (hn : n ≤ 2 ^ 20) (hv : |v| ≤ b) : |z.value| ≤ b + 1 := by
  have htriangle := abs_sub_abs_le_abs_sub z.value v
  have hone := mul_unit_le_one hn
  have herror := h.error
  linarith

theorem abs (h : z.Near v n) : z.abs.Near |v| n :=
  ⟨h.finite, by
    rw [value_abs]
    exact (abs_abs_sub_abs_le_abs_sub _ _).trans h.error⟩

section Exact

/-! On numbers that are exact an operation is rounded once. -/

variable (hx : x.Near v 0) (hy : y.Near w 0)

include hx hy

theorem rounds_add (h : |v + w| ≤ 1000) : (x + y).Rounds (v + w) := by
  rw [← hx.value_eq, ← hy.value_eq] at h ⊢
  exact Binary32.rounds_add hx.finite hy.finite (h.trans_lt (by norm_num))

theorem rounds_sub (h : |v - w| ≤ 1000) : (x - y).Rounds (v - w) := by
  rw [← hx.value_eq, ← hy.value_eq] at h ⊢
  exact Binary32.rounds_sub hx.finite hy.finite (h.trans_lt (by norm_num))

theorem rounds_mul (h : |v * w| ≤ 1000) : (x * y).Rounds (v * w) := by
  rw [← hx.value_eq, ← hy.value_eq] at h ⊢
  exact Binary32.rounds_mul hx.finite hy.finite (h.trans_lt (by norm_num))

theorem rounds_div (hw : w ≠ 0) (h : |v / w| ≤ 1000) : (x / y).Rounds (v / w) := by
  rw [← hy.value_eq] at hw
  rw [← hx.value_eq, ← hy.value_eq] at h ⊢
  exact Binary32.rounds_div hx.finite hy.finite hw (h.trans_lt (by norm_num))

end Exact

section Operations

/-! Errors add up, and each operation adds its own. -/

variable (hx : x.Near v m) (hy : y.Near w n) (k : ℕ)

include hx hy in
theorem add (hsmall : k ≤ 100 ∧ m + n ≤ 2 ^ 20) (h : |v + w| ≤ 6 * 2 ^ k) :
    (x + y).Near (v + w) (m + n + 2 ^ k) := by
  have herror : |x.value + y.value - (v + w)| ≤ (m + n : ℕ) * unit := by
    push_cast
    rw [add_sub_add_comm, add_mul]
    exact (abs_add_le _ _).trans (add_le_add hx.error hy.error)
  have hrounds := Binary32.rounds_add hx.finite hy.finite (no_overflow herror hsmall.2 h hsmall.1)
  exact hrounds.near herror hsmall.2 h

include hx hy in
theorem sub (hsmall : k ≤ 100 ∧ m + n ≤ 2 ^ 20) (h : |v - w| ≤ 6 * 2 ^ k) :
    (x - y).Near (v - w) (m + n + 2 ^ k) := by
  have herror : |x.value - y.value - (v - w)| ≤ (m + n : ℕ) * unit := by
    push_cast
    rw [sub_sub_sub_comm, add_mul]
    exact (abs_sub _ _).trans (add_le_add hx.error hy.error)
  have hrounds := Binary32.rounds_sub hx.finite hy.finite (no_overflow herror hsmall.2 h hsmall.1)
  exact hrounds.near herror hsmall.2 h

include hx hy in
/-- Each error is scaled by the other factor. -/
theorem mul (hv : |v| ≤ a) (hw : |w| ≤ b)
    (hsmall : k ≤ 100 ∧ n ≤ 2 ^ 20 ∧ m * (b + 1) + a * n ≤ 2 ^ 20 ∧ a * b ≤ 6 * 2 ^ k) :
    (x * y).Near (v * w) (m * (b + 1) + a * n + 2 ^ k) := by
  obtain ⟨hk, hn, hmn, hab⟩ := hsmall
  have h : |v * w| ≤ 6 * 2 ^ k := by
    rw [abs_mul]
    apply (mul_le_mul hv hw (abs_nonneg _) (Nat.cast_nonneg a)).trans
    exact_mod_cast hab
  have hsum : m * unit * (b + 1) + a * (n * unit) = (m * (b + 1) + a * n : ℕ) * unit := by
    push_cast
    ring
  have herror := abs_mul_sub_mul_le hx.error (hy.abs_value_le hn hw) hv hy.error
  rw [hsum] at herror
  have hrounds := Binary32.rounds_mul hx.finite hy.finite (no_overflow herror hmn h hk)
  exact hrounds.near herror hmn h

include hx in
/-- A divisor that is not small does not enlarge the error. -/
theorem div (hy : y.Near w 0) (hw : 1 ≤ |w|) (hsmall : k ≤ 100 ∧ m ≤ 2 ^ 20)
    (h : |v / w| ≤ 6 * 2 ^ k) : (x / y).Near (v / w) (m + 2 ^ k) := by
  rw [← hy.value_eq] at hw h ⊢
  have hzero : y.value ≠ 0 := abs_pos.mp (zero_lt_one.trans_le hw)
  have herror : |x.value / y.value - v / y.value| ≤ m * unit := by
    rw [← sub_div, abs_div]
    exact (div_le_self (abs_nonneg _) hw).trans hx.error
  have hbound := no_overflow herror hsmall.2 h hsmall.1
  exact (Binary32.rounds_div hx.finite hy.finite hzero hbound).near herror hsmall.2 h

end Operations

end Near

end Binary32

end Marginalia
